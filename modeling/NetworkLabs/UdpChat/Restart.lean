import NetworkLabs.UdpChat.Served
import NetworkLabs.UdpChat.Delivery

/-! A node that is stopped, started again at its address and port, and registers again. -/
namespace NetworkLabs.UdpChat

open Transition CountAck

variable {Addr τ : Type}

/-- How texts stand for datagrams: `write` is the text of a typed one, and `read` is what
`Reciever.run` makes of a text. -/
structure Wire (τ : Type) where
  write : Payload τ → String
  read : String → Payload τ

def Wire.text (w : Wire τ) : Packet τ → String
  | .datagram p => w.write p
  | .name s => s

def Wire.payload (w : Wire τ) : Packet τ → Payload τ
  | .datagram p => p
  | .name s => w.read s

/-- The process at one address and port; `connecting` waits in `Server.connect` for a reply. -/
inductive Process (Addr τ : Type)
  | down
  | connecting (n : Node Addr τ)
  | up (n : Node Addr τ)

/-- Node `a` runs throughout and the process at `b` comes and goes. `net` holds what is in flight
between them, and `session` is the NodeInfo that `a` made for the registration it received last
since the process at `b` was started. -/
structure Restart (Addr τ : Type) where
  a : Node Addr τ
  b : Process Addr τ
  net : List (Side × Packet τ)
  session : Option Ref

namespace Restart

inductive Action (Addr τ : Type)
  | readLine (i : Side) (line : τ)
  | thread (i : Side) (thread : Thread) (env : Env)
  | receive (i : Side) (k : Nat) (env : Env)
  | outside (i : Side) (source : Endpoint Addr) (p : Payload τ) (env : Env)
  | start (name : String) (failPercent : Nat)
  | connect (k : Nat)
  | connectOutside (reply : String)
  | stop
  | lose (k : Nat)
  | duplicate (k : Nat)

def node (s : Restart Addr τ) : Side → Option (Node Addr τ)
  | .a => some s.a
  | .b => match s.b with
    | .up n => some n
    | _ => none

def commit (s : Restart Addr τ) (i : Side) (n : Node Addr τ) (net : List (Side × Packet τ)) :
    Restart Addr τ :=
  match i with
  | .a => { s with a := n, net := net }
  | .b => { s with b := .up n, net := net }

/-- The session after `a` received `p`: a registration makes a new NodeInfo. -/
def registered (s : Restart Addr τ) : Side → Payload τ → Option Ref
  | .a, .register _ => some s.a.allocated
  | _, _ => s.session

section Step
variable [DecidableEq Addr] (w : Wire τ) (addr : Side → Endpoint Addr)

/-- What a successful send puts in flight between the two. -/
def carried (i : Side) : Option (Send Addr τ) → List (Side × Packet τ)
  | some ⟨target, packet⟩ => if target = addr i.other then [(i.other, packet)] else []
  | none => []

/-- Every thread of a running node may act, any `socket.send` of a thread may throw, and the
network delivers what is in flight in any order, loses or repeats it. While the process connects,
whatever comes in first is the reply, from wherever it comes; a timeout is a stop. -/
def step (s : Restart Addr τ) : Action Addr τ → Option (Restart Addr τ)
  | .readLine i line => (s.node i).bind fun n =>
      (Main.readLine n line).map fun n' => s.commit i n' s.net
  | .thread i thread env => (s.node i).bind fun n =>
      (n.step thread env).map fun out => s.commit i out.1 (s.net ++ carried addr i out.2)
  | .receive i k env => (s.node i).bind fun n =>
      match s.net[k]? with
      | some (j, packet) =>
        if j = i then
          (Reciever.receive n (addr i.other) (w.payload packet) env).map fun n' =>
            { s.commit i n' (s.net.eraseIdx k) with session := s.registered i (w.payload packet) }
        else none
      | none => none
  | .outside i source p env => (s.node i).bind fun n =>
      if source = addr i.other then none
      else (Reciever.receive n source p env).map fun n' => s.commit i n' s.net
  | .start name failPercent =>
      match s.b with
      | .down => some { s with
          b := .connecting (Server.start (addr .b) name failPercent)
          net := s.net ++ [(.a, .datagram (.register name))]
          session := none }
      | _ => none
  | .connect k =>
      match s.b, s.net[k]? with
      | .connecting n, some (.b, packet) => some { s with
          b := .up (Server.connect n (addr .a) (w.text packet))
          net := s.net.eraseIdx k }
      | _, _ => none
  | .connectOutside reply =>
      match s.b with
      | .connecting n => some { s with b := .up (Server.connect n (addr .a) reply) }
      | _ => none
  | .stop => some { s with b := .down }
  | .lose k => some { s with net := s.net.eraseIdx k }
  | .duplicate k => s.net[k]?.map fun d => { s with net := s.net ++ [d] }

def lts : LTS (Restart Addr τ) (Action Addr τ) := .ofStep (step w addr)

end Step

/-- A registration on its way to `a`. -/
def isRegister : Side × Packet τ → Bool
  | (.a, .datagram (.register _)) => true
  | _ => false

/-- A message on its way to `b`. -/
def isMessage : Side × Packet τ → Bool
  | (.b, .datagram (.message _ _)) => true
  | _ => false

/-- A datagram that neither registers nor carries a message. -/
def plain : Payload τ → Bool
  | .message _ _ | .register _ => false
  | _ => true

section Apart
variable [DecidableEq Addr] (w : Wire τ) (addr : Side → Endpoint Addr)

/-- What keeps the sessions apart. When the process is started, `a` serves nobody at its address
any more, and neither a registration nor a message of an earlier session is in flight. Besides,
the network repeats no registration, a bare name that comes in late does not read as a message or
a registration, and the confirmation of a message from `a` can be sent. -/
def apart (s : Restart Addr τ) : Action Addr τ → Bool
  | .start _ _ =>
    (s.a.served.all fun c => decide ((s.a.heap c).endpoint ≠ addr .b)) &&
      s.net.all fun d => !isRegister d && !isMessage d
  | .duplicate k => !s.net[k]?.any isRegister
  | .receive _ k _ =>
    match s.net[k]? with
    | some (_, .name text) => plain (w.read text)
    | _ => true
  | .thread .b .reciever env =>
    match s.b with
    | .up n => match n.reciever with
      | .confirm _ source => !(env.sendFails && decide (source = addr .a))
      | _ => true
    | _ => true
  | _ => true

end Apart

def issued (s : Restart Addr τ) : List (Nat × τ) :=
  match s.session with
  | some r => s.a.issuedTo r
  | none => []

end Restart

/-- The (uid, text) pairs accepted from one address and port, in the order they were queued. -/
def Node.acceptedAt [DecidableEq Addr] (n : Node Addr τ) (e : Endpoint Addr) : List (Nat × τ) :=
  n.accepted.filterMap fun x => if (n.heap x.1).endpoint = e then some x.2 else none

namespace Restart

/-- All that the running process accepted from `a` was issued to it on the NodeInfo of its own
registration, and in that order. -/
def Unmixed [DecidableEq Addr] (addr : Side → Endpoint Addr) (s : Restart Addr τ) : Prop :=
  ∀ n, s.b = .up n →
    (∀ x ∈ n.acceptedAt (addr .a), ∃ r, s.session = some r ∧ x ∈ s.a.issuedTo r) ∧
    (n.acceptedAt (addr .a)).map Prod.snd <+: s.issued.map Prod.snd

/-- Node `a` is running and has not met `b`, whose process is not running. -/
structure Initial (addr : Side → Endpoint Addr) (s : Restart Addr τ) : Prop where
  wf : s.a.Wf
  recorded : s.a.Recorded
  unmet : ∀ c ∈ s.a.served, (s.a.heap c).endpoint ≠ addr .b
  down : s.b = .down
  net : s.net = []
  session : s.session = none

/-- The sending side of the session: before the registration comes in, nothing. -/
def tx (s : Restart Addr τ) : Tx τ :=
  match s.session with
  | some r => s.a.copies r
  | none => ⟨[], 0, ∅, False⟩

/-- The receiving side of the session, where `a` is NodeInfo 0. -/
def rx (s : Restart Addr τ) : Rx τ :=
  match s.b with
  | .up n => n.rx 0
  | _ => ⟨[], 1, .idle⟩

def view (s : Restart Addr τ) : CountAck.State τ :=
  ⟨s.tx, s.rx, {x | (Side.b, Packet.datagram (.message x.1 x.2)) ∈ s.net}, 0⟩

variable {addr : Side → Endpoint Addr} {w : Wire τ} {s t : Restart Addr τ} {n n' : Node Addr τ}
  {net : List (Side × Packet τ)} {env : Env} {thread : Thread} {out : Option (Send Addr τ)}
  {source : Endpoint Addr} {p : Payload τ} {i : Side}

/-- What holds while the sessions are kept apart. -/
structure Separate (addr : Side → Endpoint Addr) (s : Restart Addr τ) : Prop where
  wf : s.a.Wf
  recorded : s.a.Recorded
  only : ∀ c ∈ s.a.served, (s.a.heap c).endpoint = addr .b → s.session = some c
  session : ∀ r, s.session = some r →
    r < s.a.allocated ∧ (s.a.heap r).sent = (s.a.issuedTo r).length
  registrations : s.net.countP isRegister + (if s.session.isSome then 1 else 0) ≤ 1
  noRegister : ∀ name, (Side.b, Packet.datagram (.register name)) ∉ s.net
  connecting : ∀ n, s.b = .connecting n →
    ∃ name failPercent, n = Server.start (addr .b) name failPercent
  up : ∀ n, s.b = .up n → n.Wf ∧ n.Peer (addr .a) 0 ∧ n.Recorded
  inOrder : InOrder s.view

theorem inOrder_empty : InOrder (⟨⟨[], 0, ∅, False⟩, ⟨[], 1, .idle⟩, ∅, 0⟩ : CountAck.State τ) where
  numbered := by simp [Numbered]
  held_issued := by simp
  data_issued := by simp
  accepted_prefix := List.prefix_rfl
  expected := by simp [Phase.pending]
  taken := by simp

/-- The same two sides with no more messages in flight. -/
theorem inOrder_view (h : InOrder s.view) (htx : t.tx = s.tx) (hrx : t.rx = s.rx)
    (hnet : ∀ x : Nat × τ, (Side.b, Packet.datagram (.message x.1 x.2)) ∈ t.net →
      (Side.b, Packet.datagram (.message x.1 x.2)) ∈ s.net) : InOrder t.view := by
  simp only [view, htx, hrx] at h ⊢
  exact inOrder_medium h (fun x hx => h.data_issued x (hnet x hx))

theorem Initial.separate (h : Initial addr s) : Separate addr s where
  wf := h.wf
  recorded := h.recorded
  only := fun c hc he => (h.unmet c hc he).elim
  session := by simp [h.session]
  registrations := by simp [h.session, h.net]
  noRegister := by simp [h.net]
  connecting := by simp [h.down]
  up := by simp [h.down]
  inOrder := by simpa [view, tx, rx, h.session, h.down, h.net] using inOrder_empty

/-- Only the datagrams in flight changed: some may be lost, or repeated if they do not register. -/
theorem Separate.set_net (hs : Separate addr s) (hnet : ∀ d ∈ net, d ∈ s.net)
    (hreg : net.countP isRegister ≤ s.net.countP isRegister) :
    Separate addr { s with net := net } where
  wf := hs.wf
  recorded := hs.recorded
  only := hs.only
  session := hs.session
  registrations := (Nat.add_le_add_right hreg _).trans hs.registrations
  noRegister := fun name hm => hs.noRegister name (hnet _ hm)
  connecting := hs.connecting
  up := hs.up
  inOrder := inOrder_view hs.inOrder rfl rfl (fun _ hm => hnet _ hm)

/-- The process at `b` changed. -/
theorem Separate.set_b {b : Process Addr τ} (hs : Separate addr s)
    (hc : ∀ n, b = .connecting n → ∃ name failPercent, n = Server.start (addr .b) name failPercent)
    (hup : ∀ n, b = .up n → n.Wf ∧ n.Peer (addr .a) 0 ∧ n.Recorded)
    (hrx : InOrder { s.view with rx := rx { s with b := b } }) :
    Separate addr { s with b := b } where
  wf := hs.wf
  recorded := hs.recorded
  only := hs.only
  session := hs.session
  registrations := hs.registrations
  noRegister := hs.noRegister
  connecting := hc
  up := hup
  inOrder := hrx

/-- The process accepts nothing more once it is gone. -/
theorem Separate.stop (hs : Separate addr s) : Separate addr { s with b := .down } := by
  apply hs.set_b (by simp) (by simp)
  have h := hs.inOrder
  exact ⟨h.numbered, h.held_issued, h.data_issued, List.nil_prefix, by simp [rx, Phase.pending],
    by simp [rx]⟩

theorem Separate.connect (hs : Separate addr s) (hb : s.b = .connecting n) (reply : String) :
    Separate addr { s with b := .up (Server.connect n (addr .a) reply) } := by
  obtain ⟨name, failPercent, rfl⟩ := hs.connecting n hb
  have hf := Server.fresh_connect (τ := τ) (addr .b) (addr .a) name reply failPercent
  apply hs.set_b (by simp)
  · rintro n ⟨⟩
    exact ⟨hf.wf, hf.peer, ⟨by simp [hf.issued], by simp [hf.accepted]⟩⟩
  · have hrx : rx { s with b := .up (Server.connect (Server.start (addr .b) name failPercent)
        (addr .a) reply) } = s.rx := by
      simp [rx, hb, Node.rx, Node.acceptedFrom, hf.accepted, hf.recieved, hf.idle]
    rw [hrx]
    exact hs.inOrder

theorem up_of_node (hn : s.node .b = some n) : s.b = .up n := by
  simp only [node] at hn
  split at hn <;> cases hn
  assumption

theorem Separate.readLine {line : τ} (hs : Separate addr s) (hn : s.node i = some n)
    (h : Main.readLine n line = some n') : Separate addr (s.commit i n' s.net) := by
  obtain rfl := Main.eq_of_readLine h
  cases i with
  | a =>
    cases hn
    exact ⟨Main.wf_readLine h hs.wf, ⟨hs.recorded.issued_lt, hs.recorded.accepted_lt⟩, hs.only,
      hs.session, hs.registrations, hs.noRegister, hs.connecting, hs.up, hs.inOrder⟩
  | b =>
    have hb := up_of_node hn
    obtain ⟨hw, hp, hr⟩ := hs.up n hb
    apply hs.set_b (by simp)
    · rintro _ ⟨⟩
      exact ⟨Main.wf_readLine h hw, Main.peer_readLine h hp, ⟨hr.issued_lt, hr.accepted_lt⟩⟩
    · have hin := hs.inOrder
      simp only [view, rx, hb] at hin ⊢
      exact hin

theorem countP_eraseIdx_add_one {test : Side × Packet τ → Bool} {k : Nat} {d : Side × Packet τ}
    (hk : net[k]? = some d) (hd : test d = true) :
    (net.eraseIdx k).countP test + 1 = net.countP test := by
  obtain ⟨hlt, he⟩ := List.getElem?_eq_some_iff.mp hk
  rw [← (List.getElem_cons_eraseIdx_perm hlt).countP_eq test, he]
  simp [hd]

section Steps
variable [DecidableEq Addr]

/-- What each action needs and does. -/
inductive Act (w : Wire τ) (addr : Side → Endpoint Addr) (s : Restart Addr τ) :
    Action Addr τ → Restart Addr τ → Prop
  | readLine {i : Side} {line : τ} {n n' : Node Addr τ} (hn : s.node i = some n)
      (hline : Main.readLine n line = some n') :
      Act w addr s (.readLine i line) (s.commit i n' s.net)
  | thread {i : Side} {thread : Thread} {env : Env} {n n' : Node Addr τ}
      {out : Option (Send Addr τ)} (hn : s.node i = some n)
      (hstep : n.step thread env = some (n', out)) :
      Act w addr s (.thread i thread env) (s.commit i n' (s.net ++ carried addr i out))
  | receive {i : Side} {k : Nat} {env : Env} {packet : Packet τ} {n n' : Node Addr τ}
      (hn : s.node i = some n) (hk : s.net[k]? = some (i, packet))
      (hrec : Reciever.receive n (addr i.other) (w.payload packet) env = some n') :
      Act w addr s (.receive i k env)
        { s.commit i n' (s.net.eraseIdx k) with session := s.registered i (w.payload packet) }
  | outside {i : Side} {source : Endpoint Addr} {p : Payload τ} {env : Env} {n n' : Node Addr τ}
      (hn : s.node i = some n) (hsource : source ≠ addr i.other)
      (hrec : Reciever.receive n source p env = some n') :
      Act w addr s (.outside i source p env) (s.commit i n' s.net)
  | start {name : String} {failPercent : Nat} (hb : s.b = .down) :
      Act w addr s (.start name failPercent) { s with
        b := .connecting (Server.start (addr .b) name failPercent)
        net := s.net ++ [(.a, .datagram (.register name))]
        session := none }
  | connect {k : Nat} {n : Node Addr τ} {packet : Packet τ} (hb : s.b = .connecting n)
      (hk : s.net[k]? = some (.b, packet)) :
      Act w addr s (.connect k) { s with
        b := .up (Server.connect n (addr .a) (w.text packet))
        net := s.net.eraseIdx k }
  | connectOutside {reply : String} {n : Node Addr τ} (hb : s.b = .connecting n) :
      Act w addr s (.connectOutside reply) { s with b := .up (Server.connect n (addr .a) reply) }
  | stop : Act w addr s .stop { s with b := .down }
  | lose {k : Nat} : Act w addr s (.lose k) { s with net := s.net.eraseIdx k }
  | duplicate {k : Nat} {d : Side × Packet τ} (hd : s.net[k]? = some d) :
      Act w addr s (.duplicate k) { s with net := s.net ++ [d] }

theorem act_of_step {a : Action Addr τ} (h : step w addr s a = some t) : Act w addr s a t := by
  cases a with
  | readLine i line =>
    obtain ⟨n, hn, h⟩ := Option.bind_eq_some_iff.mp h
    obtain ⟨n', hline, rfl⟩ := Option.map_eq_some_iff.mp h
    exact .readLine hn hline
  | thread i thread env =>
    obtain ⟨n, hn, h⟩ := Option.bind_eq_some_iff.mp h
    obtain ⟨⟨n', out⟩, hstep, rfl⟩ := Option.map_eq_some_iff.mp h
    exact .thread hn hstep
  | receive i k env =>
    obtain ⟨n, hn, h⟩ := Option.bind_eq_some_iff.mp h
    split at h <;> try contradiction
    rename_i j packet hk
    split at h <;> try contradiction
    rename_i hj
    subst hj
    obtain ⟨n', hrec, rfl⟩ := Option.map_eq_some_iff.mp h
    exact .receive hn hk hrec
  | outside i source p env =>
    obtain ⟨n, hn, h⟩ := Option.bind_eq_some_iff.mp h
    split at h <;> try contradiction
    rename_i hsource
    obtain ⟨n', hrec, rfl⟩ := Option.map_eq_some_iff.mp h
    exact .outside hn hsource hrec
  | start name failPercent =>
    simp only [step] at h
    split at h <;> cases h
    exact .start (by assumption)
  | connect k =>
    simp only [step] at h
    split at h <;> cases h
    rename_i n packet hb hk
    exact .connect hb hk
  | connectOutside reply =>
    simp only [step] at h
    split at h <;> cases h
    rename_i n hb
    exact .connectOutside hb
  | stop =>
    cases h
    exact .stop
  | lose k =>
    cases h
    exact .lose
  | duplicate k =>
    obtain ⟨d, hd, rfl⟩ := Option.map_eq_some_iff.mp h
    exact .duplicate hd

theorem mem_carried {d : Side × Packet τ} (h : d ∈ carried addr i out) :
    d.1 = i.other ∧ out = some ⟨addr i.other, d.2⟩ := by
  unfold carried at h
  split at h
  · split at h
    · rename_i target packet ht
      obtain rfl := List.mem_singleton.mp h
      exact ⟨rfl, by rw [ht]⟩
    · simp at h
  · simp at h

/-- No thread of a running node registers. -/
theorem carried_not_register {d : Side × Packet τ} (h : n.step thread env = some (n', out))
    (hd : d ∈ carried addr i out) (name : String) : d.2 ≠ .datagram (.register name) := by
  intro hreg
  obtain ⟨-, ho⟩ := mem_carried hd
  rw [hreg] at ho
  exact Node.step_out h ho name rfl

theorem countP_carried (h : n.step thread env = some (n', out)) :
    (s.net ++ carried addr i out).countP isRegister = s.net.countP isRegister := by
  have hzero : (carried addr i out).countP isRegister = 0 := by
    rw [List.countP_eq_zero]
    intro d hd hreg
    have hno := carried_not_register h hd
    obtain ⟨j, packet⟩ := d
    unfold isRegister at hreg
    split at hreg <;> simp_all
  rw [List.countP_append, hzero, Nat.add_zero]

theorem Separate.thread_a (hs : Separate addr s) (h : s.a.step thread env = some (n', out)) :
    Separate addr (s.commit .a n' (s.net ++ carried addr .a out)) := by
  obtain ⟨hal, hend, -⟩ := Node.step_heap h
  have hsent : ∀ x : Nat × τ, (Side.b, Packet.datagram (.message x.1 x.2)) ∈ carried addr .a out →
      ∃ r, s.session = some r ∧ x ∈ s.a.issuedTo r := by
    intro x hx
    obtain ⟨-, ho⟩ := mem_carried hx
    obtain ⟨c, hc, he, hheld⟩ :=
      Node.step_emitted (e := addr .b) (x := x) h (by simp [ho, emitted, Side.other])
    have hses := hs.only c hc he
    have hcopies := hs.inOrder.held_issued
    simp only [view, tx, hses] at hcopies
    exact ⟨c, hses, hcopies x hheld⟩
  refine ⟨Node.wf_step h hs.wf, Node.step_recorded h hs.wf hs.recorded, ?_, ?_, ?_, ?_,
    hs.connecting,
    hs.up, ?_⟩
  · intro c hc he
    exact hs.only c (Node.step_served h hc) ((hend c).symm.trans he)
  · intro r hr
    obtain ⟨hlt, hlen⟩ := hs.session r hr
    exact ⟨hal ▸ hlt, Node.step_sent h hlen⟩
  · exact (Nat.add_le_add_right (countP_carried h).le _).trans hs.registrations
  · intro name hm
    rcases List.mem_append.mp hm with hm | hm
    · exact hs.noRegister name hm
    · exact carried_not_register h hm name rfl
  · cases hses : s.session with
    | none =>
      refine inOrder_view hs.inOrder (by simp [tx, commit, hses]) rfl ?_
      intro x hx
      rcases List.mem_append.mp hx with hx | hx
      · exact hx
      · obtain ⟨r, hr, -⟩ := hsent x hx
        simp [hses] at hr
    | some r =>
      have hin := hs.inOrder
      simp only [view, tx, commit, hses] at hin ⊢
      have hmove := Node.step_copies h (hs.session r hses).2
      apply inOrder_medium (inOrder_txMove hmove hin).1
      intro x hx
      rcases List.mem_append.mp hx with hx | hx
      · exact (inOrder_txMove hmove hin).1.data_issued x hx
      · obtain ⟨r', hr', hx⟩ := hsent x hx
        obtain rfl : r = r' := by simpa [hses] using hr'
        exact hmove.mem_issued hx

theorem Separate.thread_b (hs : Separate addr s) (hb : s.b = .up n)
    (h : n.step thread env = some (n', out))
    (hf : thread = .reciever → ∀ c, n.reciever = .confirm c (addr .a) → env.sendFails = false) :
    Separate addr (s.commit .b n' (s.net ++ carried addr .b out)) := by
  obtain ⟨hw, hp, hr⟩ := hs.up n hb
  have hcarried : ∀ d ∈ s.net ++ carried addr .b out, d.1 = .b → d ∈ s.net := by
    intro d hd hside
    rcases List.mem_append.mp hd with hd | hd
    · exact hd
    · simp [(mem_carried hd).1, Side.other] at hside
  refine ⟨hs.wf, hs.recorded, hs.only, hs.session, ?_, ?_, by simp [commit], ?_, ?_⟩
  · exact (Nat.add_le_add_right (countP_carried h).le _).trans hs.registrations
  · exact fun name hm => hs.noRegister name (hcarried _ hm rfl)
  · rintro _ ⟨⟩
    exact ⟨Node.wf_step h hw, Node.peer_step h hp, Node.step_recorded h hw hr⟩
  · obtain ⟨k, hmove⟩ := Node.step_rx_of_sent h hw hp hf
    have hin := hs.inOrder
    simp only [view, rx, commit, hb] at hin ⊢
    apply inOrder_medium (inOrder_rxMove hmove (by simp) hin)
    exact fun x hx => hin.data_issued x (hcarried _ hx rfl)

/-- A registration that comes in opens the session: nobody else is served at its address. -/
theorem Separate.register (hs : Separate addr s) {k : Nat} {name : String} {a' : Node Addr τ}
    (hk : s.net[k]? = some (.a, .datagram (.register name)))
    (h : Reciever.receive s.a (addr .b) (.register name) env = some a') :
    Separate addr { s.commit .a a' (s.net.eraseIdx k) with session := some s.a.allocated } := by
  have hcount : (s.net.eraseIdx k).countP isRegister + 1 = s.net.countP isRegister :=
    countP_eraseIdx_add_one hk rfl
  have hnone : s.session = none := by
    have hreg := hs.registrations
    cases hses : s.session with
    | none => rfl
    | some r =>
      simp only [hses, Option.isSome_some, if_true] at hreg
      omega
  obtain ⟨hissued, -, -, hcopies⟩ := Reciever.receive_kept h
  have hfresh := Node.copies_fresh hs.wf hs.recorded (Nat.le_refl _)
  refine ⟨Reciever.wf_receive h hs.wf, Reciever.recorded_receive h hs.recorded, ?_, ?_, ?_,
    fun name hm => hs.noRegister name (List.mem_of_mem_eraseIdx hm), hs.connecting, hs.up, ?_⟩
  · intro c hc he
    rcases Reciever.receive_served h hs.wf hc with ⟨hc, hend⟩ | ⟨-, -, rfl, -⟩
    · have hses := hs.only c hc (hend.symm.trans he)
      simp [hnone] at hses
    · rfl
  · rintro r ⟨⟩
    have hlen : s.a.issuedTo s.a.allocated = [] := congrArg Tx.issued hfresh
    obtain ⟨hal, hsent⟩ := Reciever.receive_register h
    refine ⟨by simp [commit, hal], ?_⟩
    have hlen' : a'.issuedTo s.a.allocated = [] := by simpa [Node.issuedTo, hissued] using hlen
    simp [commit, hsent, hlen']
  · have hreg := hs.registrations
    simp only [commit, Option.isSome_some, if_true]
    omega
  · refine inOrder_view hs.inOrder ?_ rfl (fun x hm => List.mem_of_mem_eraseIdx hm)
    simp only [tx, commit, hnone, hcopies, hfresh]

/-- Any other datagram leaves the sending side of the session alone. -/
theorem Separate.receive_a (hs : Separate addr s) {a' : Node Addr τ}
    (h : Reciever.receive s.a source p env = some a')
    (hp : ∀ name, p = .register name → source ≠ addr .b) (hnet : ∀ d ∈ net, d ∈ s.net)
    (hreg : net.countP isRegister ≤ s.net.countP isRegister) :
    Separate addr (s.commit .a a' net) := by
  obtain ⟨hissued, -, hal, hcopies⟩ := Reciever.receive_kept h
  refine ⟨Reciever.wf_receive h hs.wf, Reciever.recorded_receive h hs.recorded, ?_, ?_,
    (Nat.add_le_add_right hreg _).trans hs.registrations,
    fun name hm => hs.noRegister name (hnet _ hm), hs.connecting, hs.up, ?_⟩
  · intro c hc he
    rcases Reciever.receive_served h hs.wf hc with ⟨hc, hend⟩ | ⟨name, hname, rfl, hsource⟩
    · exact hs.only c hc (hend.symm.trans he)
    · exact (hp name hname (hsource.symm.trans he)).elim
  · intro r hr
    obtain ⟨hlt, hlen⟩ := hs.session r hr
    exact ⟨hlt.trans_le hal, Reciever.receive_sent h hlt hlen⟩
  · refine inOrder_view hs.inOrder ?_ rfl (fun x hm => hnet _ hm)
    simp only [tx, commit, hcopies]

theorem Separate.receive_b (hs : Separate addr s) (hb : s.b = .up n)
    (h : Reciever.receive n source p env = some n')
    (hp : ∀ name, p = .register name → source ≠ addr .a) (hnet : ∀ d ∈ net, d ∈ s.net)
    (hreg : net.countP isRegister ≤ s.net.countP isRegister)
    (hmsg : ∀ uid text, p = .message uid text → source = addr .a →
      (Side.b, Packet.datagram p) ∈ s.net) :
    Separate addr (s.commit .b n' net) := by
  obtain ⟨hw, hpeer, hr⟩ := hs.up n hb
  refine ⟨hs.wf, hs.recorded, hs.only, hs.session,
    (Nat.add_le_add_right hreg _).trans hs.registrations,
    fun name hm => hs.noRegister name (hnet _ hm), by simp [commit], ?_, ?_⟩
  · rintro _ ⟨⟩
    exact ⟨Reciever.wf_receive h hw, Reciever.peer_receive h hp hpeer,
      Reciever.recorded_receive h hr⟩
  · have hin := hs.inOrder
    have stay (hrx : n'.rx 0 = n.rx 0) : InOrder (view (s.commit .b n' net)) :=
      inOrder_view hin rfl (by simp [rx, commit, hb, hrx]) (fun x hm => hnet _ hm)
    by_cases hsource : source = addr .a
    · subst hsource
      rcases Reciever.receive_peer h hw hpeer (fun name hname => hp name hname rfl) with
        ⟨-, hrx⟩ | ⟨x, hx, -, hmove⟩ | ⟨-, -, hrx⟩
      · exact stay hrx
      · have hmem := hmsg x.1 x.2 hx rfl
        rw [hx] at hmem
        simp only [view, rx, commit, hb] at hin ⊢
        refine inOrder_medium (inOrder_rxMove hmove ?_ hin)
          (fun y hm => hin.data_issued y (hnet _ hm))
        rintro y ⟨⟩
        exact hmem
      · exact stay hrx
    · exact stay (Reciever.receive_outside h hpeer hsource).2

omit [DecidableEq Addr] in
/-- A new process meets nothing that an earlier one left behind. -/
theorem Separate.start (hs : Separate addr s) {name : String} {failPercent : Nat}
    (hserved : ∀ c ∈ s.a.served, (s.a.heap c).endpoint ≠ addr .b)
    (hnet : ∀ d ∈ s.net, isRegister d = false ∧ isMessage d = false) :
    Separate addr { s with
      b := .connecting (Server.start (addr .b) name failPercent)
      net := s.net ++ [(.a, .datagram (.register name))]
      session := none } := by
  have hzero : s.net.countP isRegister = 0 := by
    rw [List.countP_eq_zero]
    intro d hd
    simp [(hnet d hd).1]
  refine ⟨hs.wf, hs.recorded, fun c hc he => (hserved c hc he).elim, by simp, ?_, ?_, ?_,
    by simp, ?_⟩
  · simp [List.countP_append, hzero, isRegister]
  · intro name' hm
    simp only [List.mem_append, List.mem_singleton, Prod.mk.injEq, reduceCtorEq, false_and,
      or_false] at hm
    exact hs.noRegister name' hm
  · rintro _ ⟨⟩
    exact ⟨name, failPercent, rfl⟩
  · have hdata : ∀ x : Nat × τ, (Side.b, Packet.datagram (.message x.1 x.2)) ∉
        s.net ++ [(.a, .datagram (.register name))] := by
      intro x hm
      simp only [List.mem_append, List.mem_singleton, Prod.mk.injEq, reduceCtorEq, false_and,
        or_false] at hm
      simpa [isMessage] using (hnet _ hm).2
    simpa [view, tx, rx, hdata] using inOrder_empty

theorem Separate.receive (hs : Separate addr s) {k : Nat} {packet : Packet τ}
    (hn : s.node i = some n) (hk : s.net[k]? = some (i, packet))
    (hplain : ∀ text, packet = .name text → plain (w.read text) = true)
    (h : Reciever.receive n (addr i.other) (w.payload packet) env = some n') :
    Separate addr { s.commit i n' (s.net.eraseIdx k) with
      session := s.registered i (w.payload packet) } := by
  have hnet : ∀ d ∈ s.net.eraseIdx k, d ∈ s.net := fun d hd => List.mem_of_mem_eraseIdx hd
  have hreg := (List.eraseIdx_sublist s.net k).countP_le (p := isRegister)
  have hmem := List.mem_of_getElem? hk
  have typed : ∀ p, w.payload packet = p → plain p = false → packet = .datagram p := by
    rintro p rfl hno
    cases packet with
    | datagram p => rfl
    | name text => simp [Wire.payload, hplain text rfl] at hno
  cases i with
  | a =>
    cases hn
    by_cases hname : ∃ name, w.payload packet = .register name
    · obtain ⟨name, hname⟩ := hname
      rw [hname] at h ⊢
      exact hs.register (typed _ hname rfl ▸ hk) h
    · have hsame : s.registered .a (w.payload packet) = s.session := by
        cases hp : w.payload packet with
        | register name => exact (hname ⟨name, hp⟩).elim
        | _ => rfl
      rw [hsame]
      exact hs.receive_a h (fun name hp => (hname ⟨name, hp⟩).elim) hnet hreg
  | b =>
    have hb := up_of_node hn
    refine hs.receive_b hb h ?_ hnet hreg ?_
    · intro name hp
      have := typed _ hp rfl
      exact (hs.noRegister name (this ▸ hmem)).elim
    · intro uid text hp _
      rw [hp, ← typed _ hp rfl]
      exact hmem

/-- Every step that is kept apart keeps the sessions separate. -/
theorem separate_step {a : Action Addr τ} (h : step w addr s a = some t)
    (hc : apart w addr s a = true) (hs : Separate addr s) : Separate addr t := by
  cases act_of_step h with
  | readLine hn hline => exact hs.readLine hn hline
  | @thread i thread env n n' out hn hstep =>
    cases i with
    | a =>
      cases hn
      exact hs.thread_a hstep
    | b =>
      apply hs.thread_b (up_of_node hn) hstep
      rintro rfl c hpc
      simpa [apart, up_of_node hn, hpc] using hc
  | receive hn hk hrec =>
    refine hs.receive hn hk ?_ hrec
    rintro text rfl
    simpa [apart, hk] using hc
  | @outside i source p env n n' hn hsource hrec =>
    cases i with
    | a =>
      cases hn
      exact hs.receive_a hrec (fun _ _ => hsource) (fun _ => id) (Nat.le_refl _)
    | b =>
      exact hs.receive_b (up_of_node hn) hrec (fun _ _ => hsource) (fun _ => id) (Nat.le_refl _)
        (fun _ _ _ he => (hsource he).elim)
  | start hb =>
    simp only [apart, Bool.and_eq_true, List.all_eq_true, decide_eq_true_eq,
      Bool.not_eq_true'] at hc
    exact hs.start hc.1 hc.2
  | @connect k n packet hb hk =>
    have hdrop : Separate addr { s with net := s.net.eraseIdx k } :=
      hs.set_net (fun d hd => List.mem_of_mem_eraseIdx hd) (List.eraseIdx_sublist s.net k).countP_le
    exact hdrop.connect hb (w.text packet)
  | connectOutside hb => exact hs.connect hb _
  | stop => exact hs.stop
  | @lose k =>
    exact hs.set_net (fun d hd => List.mem_of_mem_eraseIdx hd)
      (List.eraseIdx_sublist s.net k).countP_le
  | @duplicate k d hd =>
    have hno : isRegister d = false := by simpa [apart, hd] using hc
    refine hs.set_net ?_ (by simp [List.countP_append, hno])
    intro d' hm
    rcases List.mem_append.mp hm with hm | hm
    · exact hm
    · rw [List.mem_singleton.mp hm]
      exact List.mem_of_getElem? hd

end Steps

end Restart

theorem Node.acceptedAt_eq [DecidableEq Addr] {n : Node Addr τ} {e : Endpoint Addr} {q : Ref}
    (hp : n.Peer e q) (hr : n.Recorded) : n.acceptedAt e = n.acceptedFrom q := by
  apply List.filterMap_congr
  intro x hx
  have hiff : (n.heap x.1).endpoint = e ↔ x.1 = q := by
    constructor
    · exact hp.unique x.1 (hr.accepted_lt x hx)
    · rintro rfl
      exact hp.endpoint
  simp [hiff]

namespace Restart

variable [DecidableEq Addr] {xs : List (Action Addr τ)}

/-- While every step keeps the sessions apart, the running process has accepted from `a` only what
was issued to it in its own session, and in that order. -/
theorem unmixed_of_apart (hs : Initial addr s)
    (h : ((lts w addr).guard fun s a => apart w addr s a).MTr s xs t) : Unmixed addr t := by
  have hinv : ((lts w addr).guard fun s a => apart w addr s a).TrInv (Separate addr) :=
    fun _ _ _ hstep hs => separate_step hstep.1 hstep.2 hs
  have hsep := LTS.mTr_of_trInv hinv h hs.separate
  intro n hb
  obtain ⟨-, hp, hr⟩ := hsep.up n hb
  have hprefix : n.acceptedAt (addr .a) <+: t.issued := by
    have hin := hsep.inOrder.accepted_prefix
    rw [Node.acceptedAt_eq hp hr]
    simp only [view, rx, tx, hb] at hin
    unfold issued
    split at hin <;> simp_all [Node.rx, Node.copies]
  refine ⟨?_, hprefix.map Prod.snd⟩
  intro x hx
  have hmem := hprefix.subset hx
  unfold issued at hmem
  split at hmem
  · rename_i r hr
    exact ⟨r, hr, hmem⟩
  · simp at hmem

/-- Names that begin with none of the three type letters. -/
def pairWire : Wire String where
  write
    | .message uid text => "M" ++ toString uid ++ ":" ++ text
    | .confirm => "C"
    | .register name => "R" ++ name
    | .badMessage | .other | .unreadable => ""
  read _ := .other

/-- Node `a` has just been started, and nobody registered yet. -/
def alone : Restart Nat String := ⟨Server.start (Link.pairAddr .a) "a" 0, .down, [], none⟩

theorem initial_alone : Initial Link.pairAddr alone where
  wf := ⟨by simp [alone, Server.start], by simp [alone, Server.start],
    by simp [alone, Server.start, SenderPc.refs],
    by simp [alone, Server.start, Node.tasks, Storage.empty, CheckerPc.hand],
    by simp [alone, Server.start, RecieverPc.handling]⟩
  recorded := ⟨by simp [alone, Server.start], by simp [alone, Server.start]⟩
  unmet := by decide
  down := rfl
  net := rfl
  session := rfl

/-- The process is started, `a` answers its registration and the answer comes in. -/
def joined : List (Action Nat String) :=
  [.start "b" 0, .receive .a 0 (.calm 0), .thread .a .reciever (.calm 0),
    .thread .a .reciever (.calm 0), .connect 0]

/-- A line typed at `a` is sent to its one neighbour. -/
def spoken (line : String) (now : Int) : List (Action Nat String) :=
  .readLine .a line :: List.replicate 6 (.thread .a .sender (.calm now))

/-- The process takes the first datagram in flight. -/
def heard : List (Action Nat String) :=
  .receive .b 0 (.calm 0) :: List.replicate 3 (.thread .b .reciever (.calm 0))

/-- One turn of the Checker, in which what it sends is lost. -/
def unheard (now : Int) : List (Action Nat String) :=
  List.replicate 5 (.thread .a .checker (.calm now)) ++ [.lose 0]

/-- No copy of a line gets through and `a` drops the process, which then registers again. -/
def separated : List (Action Nat String) :=
  joined ++ spoken "hi" 0 ++ [.lose 0] ++ [5000, 10000, 15000].flatMap unheard ++
    List.replicate 3 (.thread .a .checker (.calm 20000)) ++ [.stop] ++ joined ++
    spoken "again" 20000 ++ heard

theorem unmixed_of_apart_separated :
    Unmixed Link.pairAddr (LTS.after (step pairWire Link.pairAddr) alone separated) ∧
      (LTS.after (step pairWire Link.pairAddr) alone separated).issued = [(1, "again")] :=
  ⟨unmixed_of_apart initial_alone (LTS.mTr_guard_after (by decide +kernel)), by decide +kernel⟩

/-- The line is lost and the process registers again before `a` sends the line once more. -/
def mixed : List (Action Nat String) :=
  joined ++ spoken "hi" 0 ++ [.lose 0, .stop] ++ joined ++
    List.replicate 3 (.thread .a .checker (.calm 5000)) ++ heard

theorem not_unmixed_mixed :
    ¬ ∀ xs t, (lts pairWire Link.pairAddr).MTr alone xs t → Unmixed Link.pairAddr t := by
  intro hall
  have hmixed := hall mixed _ (LTS.mTr_after (by decide +kernel))
  have hsession : (LTS.after (step pairWire Link.pairAddr) alone mixed).session = some 1 := rfl
  obtain ⟨r, hr, hx⟩ := (hmixed _ rfl).1 (1, "hi") (by decide +kernel)
  obtain rfl : 1 = r := Option.some.inj (hsession.symm.trans hr)
  exact absurd hx (by decide +kernel)

end Restart

end NetworkLabs.UdpChat
